import Sbunix.Tarfs.Walk

namespace Sbunix.Tarfs

open Library

theorem visitedFrom_sublist (skip : Bool) (address : Nat) (entries : List Entry) :
    (visitedFrom skip address entries).Sublist (placed address entries) := by
  induction entries generalizing skip address with
  | nil => exact List.Sublist.slnil
  | cons entry entries ih =>
    cases skip with
    | true => exact (ih false (after address entry)).cons _
    | false => exact (ih (Overshoots entry.size) (after address entry)).cons_cons _

theorem placed_archive {mem : Memory} {stop address : Nat} {entries : List Entry}
    (archive : Archive mem stop address entries) :
    ∀ member ∈ placed address entries, ∃ others, Archive mem stop member.1 (member.2 :: others) := by
  induction entries generalizing address with
  | nil =>
    intro member inside
    cases inside
  | cons entry entries ih =>
    intro member inside
    rcases List.mem_cons.mp inside with rfl | later
    · exact ⟨entries, archive⟩
    · exact ih archive.2 member later

theorem placed_header {mem : Memory} {stop address : Nat} {entries : List Entry}
    (archive : Archive mem stop address entries) : ∀ member ∈ placed address entries, Header mem member.1 member.2 := by
  intro member inside
  obtain ⟨others, header, _⟩ := placed_archive archive member inside
  exact header

theorem placed_mem {address : Nat} {entries : List Entry} :
    ∀ member ∈ placed address entries, member.2 ∈ entries ∧ address ≤ member.1 := by
  induction entries generalizing address with
  | nil =>
    intro member inside
    cases inside
  | cons entry entries ih =>
    intro member inside
    rcases List.mem_cons.mp inside with rfl | later
    · exact ⟨List.mem_cons_self, Nat.le_refl _⟩
    · obtain ⟨known, low⟩ := ih member later
      refine ⟨List.mem_cons_of_mem _ known, ?_⟩
      unfold after at low
      omega

theorem dataOf_cons (member : Nat × Entry) (members : List (Nat × Entry)) (name : List (BitVec 8)) :
    dataOf (member :: members) name = if member.2.name = name then some (member.1 + 512) else dataOf members name := by
  unfold dataOf
  rw [List.find?_cons]
  by_cases same : member.2.name = name
  · simp [same]
  · simp [same]

theorem fileNames_cons (member : Nat × Entry) (members : List (Nat × Entry)) :
    fileNames (member :: members) = if 0 < member.2.size then member.2.name :: fileNames members
      else fileNames members := by
  unfold fileNames
  rw [List.filter_cons]
  by_cases positive : 0 < member.2.size
  · simp [positive]
  · simp [positive]

theorem fileNames_length_le {left right : List (Nat × Entry)} (shorter : left.Sublist right) :
    (fileNames left).length ≤ (fileNames right).length :=
  ((shorter.filter _).map _).length_le

section Visits

variable {mem : Memory}

theorem idle_read {name : List (BitVec 8)} (nonempty : name ≠ []) : Idle mem (readVisit mem name) := by
  intro state header zero _
  rw [readVisit, cString_of_zero zero]
  simp only [Option.bind_eq_bind, Option.bind_some, if_neg (Ne.symm nonempty), Option.pure_def]

theorem idle_dir : Idle mem (dirVisit mem) := by
  intro state header _ zero
  rw [dirVisit, myAtool_of_zero zero]
  rfl

theorem readVisit_eq {address : Nat} {entry : Entry} (header : Header mem address entry) (valid : entry.Valid)
    (name : List (BitVec 8)) (state : Option Nat) :
    readVisit mem name state address =
      some (if entry.name = name then (some (address + 512), true) else (state, false)) := by
  rw [readVisit, header.string valid]
  rfl

theorem Entry.Valid.size_pos {entry : Entry} (valid : entry.Valid) (positive : 0 < entry.size) :
    0 < BitVec.ofNat 32 entry.size := by
  have small := valid.size
  rw [BitVec.lt_def, BitVec.toNat_ofNat]
  change 0 < entry.size % 2 ^ 32
  omega

theorem dirVisit_eq {address : Nat} {entry : Entry} (header : Header mem address entry) (valid : entry.Valid)
    {files : List (List (BitVec 8))} (room : 0 < entry.size → files.length < 49) :
    dirVisit mem files address =
      some (if 0 < entry.size then files ++ [entry.name] else files, false) := by
  rw [dirVisit, header.size valid]
  simp only [Option.bind_eq_bind, Option.bind_some]
  by_cases positive : 0 < entry.size
  · rw [if_pos (valid.size_pos positive), if_pos positive, header.string valid]
    simp only [Option.bind_some, if_pos (room positive)]
  · have zero : entry.size = 0 := by omega
    rw [zero]
    rfl

theorem visitAll_read {members : List (Nat × Entry)} (name : List (BitVec 8))
    (known : ∀ member ∈ members, Header mem member.1 member.2 ∧ member.2.Valid) :
    visitAll (readVisit mem name) none (members.map Prod.fst) =
      some (dataOf members name, (dataOf members name).isSome) := by
  induction members with
  | nil => rfl
  | cons member members ih =>
    obtain ⟨header, valid⟩ := known member List.mem_cons_self
    have rest := ih fun other inside => known other (List.mem_cons_of_mem _ inside)
    rw [List.map_cons, visitAll, readVisit_eq header valid, dataOf_cons]
    by_cases same : member.2.name = name
    · simp only [if_pos same, Option.bind_eq_bind, Option.bind_some, if_true, Option.isSome_some]
    · simp only [if_neg same, Option.bind_eq_bind, Option.bind_some, Bool.false_eq_true, if_false, rest]

theorem visitAll_dir {members : List (Nat × Entry)} (files : List (List (BitVec 8)))
    (known : ∀ member ∈ members, Header mem member.1 member.2 ∧ member.2.Valid)
    (room : files.length + (fileNames members).length ≤ 49) :
    visitAll (dirVisit mem) files (members.map Prod.fst) = some (files ++ fileNames members, false) := by
  induction members generalizing files with
  | nil =>
    rw [fileNames]
    exact congrArg (fun names => some (names, false)) (List.append_nil files).symm
  | cons member members ih =>
    obtain ⟨header, valid⟩ := known member List.mem_cons_self
    have others : ∀ other ∈ members, Header mem other.1 other.2 ∧ other.2.Valid :=
      fun other inside => known other (List.mem_cons_of_mem _ inside)
    rw [fileNames_cons] at room ⊢
    by_cases positive : 0 < member.2.size
    · rw [if_pos positive, List.length_cons] at room
      have rest := ih (files ++ [member.2.name]) others (by
        rw [List.length_append, List.length_singleton]
        omega)
      rw [List.map_cons, visitAll, dirVisit_eq header valid (fun _ => by omega)]
      simp only [if_pos positive, Option.bind_eq_bind, Option.bind_some, Bool.false_eq_true, if_false, rest,
        List.append_assoc, List.singleton_append]
    · rw [if_neg positive] at room
      rw [List.map_cons, visitAll, dirVisit_eq header valid (fun large => absurd large positive)]
      simp only [if_neg positive, Option.bind_eq_bind, Option.bind_some, Bool.false_eq_true, if_false,
        ih files others room]

end Visits

/-- Every entry that the walk leaves out is empty and has the name of an earlier entry. -/
def Harmless : Bool → List (List (BitVec 8)) → List Entry → Prop
  | _, _, [] => True
  | true, seen, entry :: entries => entry.size = 0 ∧ entry.name ∈ seen ∧ Harmless false seen entries
  | false, seen, entry :: entries => Harmless (Overshoots entry.size) (entry.name :: seen) entries

theorem dataOf_low {members : List (Nat × Entry)} {name : List (BitVec 8)} {address data : Nat}
    (low : ∀ member ∈ members, address ≤ member.1) (found : dataOf members name = some data) :
    address + 512 ≤ data := by
  unfold dataOf at found
  obtain ⟨member, search, rfl⟩ := Option.map_eq_some_iff.mp found
  have bound := low member (List.mem_of_find?_eq_some search)
  omega

/-- A file that the walk leaves out is missed in the listing. -/
theorem skipped_name (address : Nat) {entry : Entry} (entries : List Entry) :
    fileNames (visitedFrom false (after address entry) entries) ≠
      entry.name :: fileNames (placed (after address entry) entries) := by
  intro names
  have bound := fileNames_length_le (visitedFrom_sublist false (after address entry) entries)
  rw [names, List.length_cons] at bound
  omega

/-- Its contents are missed too, since those of the entries behind it lie higher. -/
theorem skipped_data (address : Nat) {entry : Entry} (entries : List Entry) :
    dataOf (visitedFrom false (after address entry) entries) entry.name ≠ some (address + 512) := by
  intro missed
  have shorter := visitedFrom_sublist false (after address entry) entries
  have low : ∀ member ∈ visitedFrom false (after address entry) entries, after address entry ≤ member.1 :=
    fun member inside => (placed_mem member (shorter.subset inside)).2
  have bound := dataOf_low low missed
  unfold after at bound
  omega

theorem harmless_iff {skip : Bool} {seen : List (List (BitVec 8))} (address : Nat) {entries : List Entry} :
    Harmless skip seen entries ↔
      fileNames (visitedFrom skip address entries) = fileNames (placed address entries) ∧
        ∀ name, name ∉ seen →
          dataOf (visitedFrom skip address entries) name = dataOf (placed address entries) name := by
  induction entries generalizing skip seen address with
  | nil => cases skip <;> exact iff_of_true trivial ⟨rfl, fun _ _ => rfl⟩
  | cons entry entries ih =>
    cases skip with
    | true =>
      simp only [Harmless, visitedFrom, placed, dataOf_cons, fileNames_cons]
      rw [ih (after address entry)]
      constructor
      · intro harmless
        obtain ⟨empty, old, names, data⟩ := harmless
        refine ⟨?_, ?_⟩
        · rw [if_neg (by omega), names]
        · intro name new
          have different : entry.name ≠ name := fun same => new (same ▸ old)
          rw [if_neg different, data name new]
      · intro agree
        obtain ⟨names, data⟩ := agree
        have empty : entry.size = 0 := by
          by_contra large
          rw [if_pos (by omega)] at names
          exact skipped_name address entries names
        have old : entry.name ∈ seen := by
          by_contra new
          have missed := data entry.name new
          rw [if_pos rfl] at missed
          exact skipped_data address entries missed
        rw [if_neg (by omega)] at names
        refine ⟨empty, old, names, ?_⟩
        intro name new
        have different : entry.name ≠ name := fun same => new (same ▸ old)
        have same := data name new
        rwa [if_neg different] at same
    | false =>
      simp only [Harmless, visitedFrom, placed, dataOf_cons, fileNames_cons]
      rw [ih (after address entry)]
      constructor
      · intro agree
        obtain ⟨names, data⟩ := agree
        refine ⟨by rw [names], ?_⟩
        intro name new
        by_cases same : entry.name = name
        · rw [if_pos same, if_pos same]
        · rw [if_neg same, if_neg same]
          apply data
          intro member
          rcases List.mem_cons.mp member with equal | old
          · exact same equal.symm
          · exact new old
      · intro agree
        obtain ⟨names, data⟩ := agree
        refine ⟨?_, ?_⟩
        · by_cases positive : 0 < entry.size
          · rw [if_pos positive, if_pos positive] at names
            exact List.tail_eq_of_cons_eq names
          · rw [if_neg positive, if_neg positive] at names
            exact names
        · intro name new
          have different : entry.name ≠ name := fun same => new (same ▸ List.mem_cons_self)
          have same := data name fun old => new (List.mem_cons_of_mem _ old)
          rwa [if_neg different, if_neg different] at same

end Sbunix.Tarfs
