import Sbunix.Fs.Reject

namespace Sbunix.Fs

open Library

inductive Syscall where
  | create (name : List (BitVec 8))
  | write (contents : List (BitVec 8)) (fd : Int)
  | read (fd : Int) (count : BitVec 32) (buf : Bytes)
  | seek (fd : Int) (position : BitVec 32)

def stdout : Int := 1

def syscall (s : State) : Syscall → Option State
  | .create name => (createFile s name).map Prod.snd
  | .write contents fd => if fd = stdout then some s else (writeFile s contents fd).map Prod.snd
  -- the smaller descriptors are those of the terminal and the archive
  | .read fd count buf => if 100 ≤ fd then (readFile s fd count buf).map Prod.snd else some s
  | .seek fd position => seekFile s fd position

def staleSize (start : State) (i : Nat) : BitVec 32 := loadWord start.readBuffer (inodeSize * i + 104) 4

/-- What the calls keep of the start: the superblock, the read buffer behind its first sector, and the
    sizes that every sync takes from there. -/
structure Stale (start s : State) : Prop where
  located : Located s.sb
  buffer : ∀ m, 512 ≤ m → s.readBuffer m = start.readBuffer m
  sizes : ∀ i, 4 ≤ i → i < 100 → s.size i = staleSize start i

section Sizes

variable {start s next : State}

theorem Stale.load (stale : Stale start s) {i : Nat} (behind : 4 ≤ i) :
    loadWord s.readBuffer (128 * i + 104) 4 = staleSize start i :=
  loadWord_congr fun m low _ => stale.buffer m (by omega)

theorem Stale.synced (stale : Stale start s) {changed : State} (sb : changed.sb = s.sb)
    (buffer : changed.readBuffer = s.readBuffer) : Stale start (rsync changed) := by
  have placed : Located changed.sb := sb ▸ stale.located
  constructor
  · exact rsync_located placed
  · intro m rest
    rw [rsync_readBuffer_rest placed rest, buffer, stale.buffer m rest]
  · intro i behind inside
    change loadWord (rsync changed).inodeList (128 * i + 104) 4 = _
    rw [rsync_load placed inside 104 4 (by decide), if_neg (by omega), buffer, stale.load behind]

theorem Stale.create {name : List (BitVec 8)} {fd : Int} (stale : Stale start s)
    (created : createFile s name = some (fd, next)) : Stale start next := by
  rcases createFile_cases created with ⟨_, map, used, rfl⟩ | ⟨i, _, map, used, ⟨_, rfl⟩ | ⟨_, block, rfl⟩⟩
  · exact ⟨stale.located, stale.buffer, stale.sizes⟩
  · refine ⟨stale.located, stale.buffer, ?_⟩
    intro j behind inside
    rw [← stale.sizes j behind inside]
    apply loadWord_storeWord_outside
    change 128 * j + 104 + 4 ≤ 128 * i + 120 ∨ 128 * i + 120 + 4 ≤ 128 * j + 104
    omega
  · exact stale.synced rfl rfl

theorem createFile_size {name : List (BitVec 8)} {fd : Int} (located : Located s.sb)
    (created : createFile s name = some (fd, next)) {j : Nat} (first : j < 4) :
    (name.length ≤ 104 → next.size j = s.size j) ∧
      ((∀ character ∈ name, character ≠ 0) → s.size j ≠ 0 → next.size j ≠ 0) := by
  rcases createFile_cases created with ⟨_, map, used, rfl⟩ | ⟨i, _, map, used, ⟨_, rfl⟩ | ⟨_, block, rfl⟩⟩
  · exact ⟨fun _ => rfl, fun _ nonzero => nonzero⟩
  · have same : (s.setField i 120 isTrue 4).size j = s.size j := by
      apply loadWord_storeWord_outside
      change 128 * j + 104 + 4 ≤ 128 * i + 120 ∨ 128 * i + 120 + 4 ≤ 128 * j + 104
      omega
    exact ⟨fun _ => same, fun _ nonzero zero => nonzero (same.symm.trans zero)⟩
  · generalize claimedEq : ({ s with
      inodeList := claim s.inodeList i name block, memoryMap := map, usedBlocks := used } : State) = claimed
    have placed : Located claimed.sb := by
      rw [← claimedEq]
      exact located
    have synced : (rsync claimed).size j = loadWord (claim s.inodeList i name block) (128 * j + 104) 4 := by
      change loadWord (rsync claimed).inodeList (128 * j + 104) 4 = _
      rw [rsync_load placed (by omega) 104 4 (by decide), if_pos first, ← claimedEq]
    rw [synced]
    exact ⟨fun short => claim_size short j, fun noNul => claim_size_ne_zero noNul j⟩

theorem writeFile_size {contents : List (BitVec 8)} {fd result : Int} (stale : Stale start s)
    (written : writeFile s contents fd = some (result, next)) :
    Stale start next ∧ ∀ j : Nat, j < 4 → next.size j = if fd = inflate j then stringLength contents else s.size j := by
  rcases descriptor_cases fd with ⟨i, inside, rfl⟩ | ⟨outside, other⟩
  · obtain ⟨notMinus, entry⟩ := entryOf_inflate inside
    generalize sizedEq : s.setField i 104 (stringLength contents) 4 = sized
    have sb : sized.sb = s.sb := by rw [← sizedEq]; rfl
    have buffer : sized.readBuffer = s.readBuffer := by rw [← sizedEq]; rfl
    have synced := stale.synced sb buffer
    have placed : Located sized.sb := sb ▸ stale.located
    rw [writeFile, if_neg notMinus, entry, Option.bind_eq_bind, Option.bind_some, sizedEq] at written
    cases written
    refine ⟨⟨synced.located, synced.buffer, synced.sizes⟩, ?_⟩
    intro j first
    change loadWord (rsync sized).inodeList (128 * j + 104) 4 = _
    rw [rsync_load placed (by omega) 104 4 (by decide), if_pos first, ← sizedEq]
    split
    · rename_i same
      simp only [inflate, Int.add_left_inj, Int.natCast_inj] at same
      subst same
      exact loadWord_storeWord 4 (stringLength contents)
    · rename_i different
      have apart : i ≠ j := fun same => different (congrArg (fun k : Nat => inflate k) same)
      apply loadWord_storeWord_outside
      change 128 * j + 104 + 4 ≤ 128 * i + 104 ∨ 128 * i + 104 + 4 ≤ 128 * j + 104
      omega
  · rw [writeFile, outside] at written
    split at written
    · cases written
      refine ⟨stale, fun j first => (if_neg ?_).symm⟩
      exact other j (Nat.lt_trans first (by decide))
    · cases written

theorem moveCursor_size (s : State) (i : Nat) (value : BitVec 32) (buffer : Bytes) (j : Nat) :
    (moveCursor s i value buffer).size j = s.size j :=
  moveCursor_load s i value buffer j 104 4 (by decide) (by decide)

theorem Stale.moveCursor (stale : Stale start s) {i : Nat} {value : BitVec 32} {buffer : Bytes}
    (rest : ∀ m, 512 ≤ m → buffer m = s.readBuffer m) : Stale start (moveCursor s i value buffer) := by
  refine ⟨stale.located, ?_, ?_⟩
  · intro m behind
    exact (rest m behind).trans (stale.buffer m behind)
  · intro j behind inside
    rw [moveCursor_size, stale.sizes j behind inside]

theorem seekFile_size {fd : Int} {position : BitVec 32} (stale : Stale start s)
    (sought : seekFile s fd position = some next) : Stale start next ∧ ∀ j, next.size j = s.size j := by
  rcases descriptor_cases fd with ⟨i, inside, rfl⟩ | ⟨outside, _⟩
  · obtain ⟨value, rfl⟩ := seekFile_eq inside sought
    exact ⟨stale.moveCursor fun _ _ => rfl, moveCursor_size s i value _⟩
  · rw [seekFile, outside] at sought
    cases sought

theorem readFile_size {fd : Int} {count : BitVec 32} {buf : Bytes} {result : Option Bytes} (stale : Stale start s)
    (done : readFile s fd count buf = some (result, next)) : Stale start next ∧ ∀ j, next.size j = s.size j := by
  rcases descriptor_cases fd with ⟨i, inside, rfl⟩ | ⟨outside, _⟩
  · obtain ⟨value, rfl⟩ := readFile_eq inside done
    refine ⟨stale.moveCursor ?_, moveCursor_size s i value _⟩
    intro m behind
    rw [readDisk_readBuffer, blit_outside (by omega)]
  · rw [readFile, outside] at done
    split at done
    · cases done
      exact ⟨stale, fun _ => rfl⟩
    · cases done

end Sizes

def Syscall.record (fd : Int) (length : BitVec 32) : Syscall → BitVec 32
  | .write contents other => if other = fd then stringLength contents else length
  | _ => length

def lastLength (fd : Int) (calls : List Syscall) : BitVec 32 :=
  calls.foldl (fun length call => call.record fd length) 0

def Syscall.NoNul : Syscall → Prop
  | .create name => ∀ character ∈ name, character ≠ 0
  | _ => True

def Syscall.ShortName : Syscall → Prop
  | .create name => name.length ≤ 104
  | _ => True

theorem syscall_size {start s next : State} {call : Syscall} (stale : Stale start s)
    (executed : syscall s call = some next) :
    Stale start next ∧ ∀ (j : Nat) (length : BitVec 32), j < 4 →
      (call.ShortName → s.size j = length → next.size j = call.record (inflate j) length) ∧
      (call.NoNul → (length ≠ 0 → s.size j ≠ 0) → call.record (inflate j) length ≠ 0 → next.size j ≠ 0) := by
  cases call with
  | create name =>
    rw [syscall, Option.map_eq_some_iff] at executed
    obtain ⟨⟨fd, _⟩, created, rfl⟩ := executed
    refine ⟨stale.create created, ?_⟩
    intro j length first
    obtain ⟨same, nonzero⟩ := createFile_size stale.located created first
    refine ⟨fun short before => (same short).trans before, fun noNul before recorded => nonzero noNul (before recorded)⟩
  | write contents fd =>
    rw [syscall] at executed
    split at executed
    · rename_i terminal
      cases executed
      refine ⟨stale, ?_⟩
      intro j length first
      have other : fd ≠ inflate j := by
        rw [terminal, stdout, inflate]
        omega
      rw [Syscall.record, if_neg other]
      exact ⟨fun _ before => before, fun _ before => before⟩
    · rw [Option.map_eq_some_iff] at executed
      obtain ⟨⟨result, _⟩, written, rfl⟩ := executed
      obtain ⟨kept, sizes⟩ := writeFile_size stale written
      refine ⟨kept, ?_⟩
      intro j length first
      rw [sizes j first, Syscall.record]
      split
      · exact ⟨fun _ _ => rfl, fun _ _ recorded => recorded⟩
      · exact ⟨fun _ before => before, fun _ before => before⟩
  | read fd count buf =>
    have kept : Stale start next ∧ ∀ j, next.size j = s.size j := by
      rw [syscall] at executed
      split at executed
      · rw [Option.map_eq_some_iff] at executed
        obtain ⟨⟨result, _⟩, done, rfl⟩ := executed
        exact readFile_size stale done
      · cases executed
        exact ⟨stale, fun _ => rfl⟩
    refine ⟨kept.1, ?_⟩
    intro j length first
    rw [kept.2 j]
    exact ⟨fun _ before => before, fun _ before => before⟩
  | seek fd position =>
    have kept := seekFile_size stale executed
    refine ⟨kept.1, ?_⟩
    intro j length first
    rw [kept.2 j]
    exact ⟨fun _ before => before, fun _ before => before⟩

theorem run_sizes {start s final : State} {calls : List Syscall} (stale : Stale start s)
    (executed : run syscall s calls = some final) {j : Nat} (first : j < 4) (length : BitVec 32) :
    Stale start final ∧
      ((∀ call ∈ calls, call.ShortName) → s.size j = length →
        final.size j = calls.foldl (fun length call => call.record (inflate j) length) length) ∧
      ((∀ call ∈ calls, call.NoNul) → (length ≠ 0 → s.size j ≠ 0) →
        calls.foldl (fun length call => call.record (inflate j) length) length ≠ 0 → final.size j ≠ 0) := by
  induction calls generalizing s length with
  | nil =>
    cases executed
    exact ⟨stale, fun _ same => same, fun _ nonzero => nonzero⟩
  | cons call calls ih =>
    obtain ⟨next, called, rest⟩ := run_cons.mp executed
    obtain ⟨kept, sizes⟩ := syscall_size stale called
    obtain ⟨same, nonzero⟩ := sizes j length first
    obtain ⟨done, sameLater, nonzeroLater⟩ := ih kept rest (call.record (inflate j) length)
    refine ⟨done, ?_, ?_⟩
    · intro short before
      exact sameLater (fun other member => short other (List.mem_cons_of_mem _ member))
        (same (short call List.mem_cons_self) before)
    · intro noNul before
      exact nonzeroLater (fun other member => noNul other (List.mem_cons_of_mem _ member))
        (nonzero (noNul call List.mem_cons_self) before)

theorem Formatted.stale {start s : State} (formatted : Formatted start s) : Stale start s := by
  refine ⟨formatted.located, formatted.buffer, ?_⟩
  intro i behind inside
  apply loadWord_congr
  intro m low high
  change 128 * i + 104 ≤ m at low
  change m < 128 * i + 104 + 4 at high
  exact formatted.rest m (by omega) (by omega)

theorem Formatted.size_zero {start s : State} (formatted : Formatted start s) {j : Nat} (first : j < 4) :
    s.size j = 0 := by
  apply loadWord_of_zero
  intro m _ high
  change m < 128 * j + 104 + 4 at high
  exact formatted.first m (by omega)

def NonzeroSize (s : State) (fd : Int) : Prop := ∃ i : Nat, i < inodeCount ∧ fd = inflate i ∧ s.size i ≠ 0

/-- Where the call reaches `seek_file` or `read_file`, the size that it divides by is not zero. -/
def Divisible (s : State) : Syscall → Prop
  | .seek fd _ => NonzeroSize s fd
  | .read fd _ _ => 100 ≤ fd → NonzeroSize s fd
  | _ => True

/-- The last write to the file was not empty. The sizes of files behind the first sector are those that the
    read buffer held at the start. -/
def Written (start : State) (before : List Syscall) (fd : Int) : Prop :=
  ∃ i : Nat, i < inodeCount ∧ fd = inflate i ∧ (if i < 4 then lastLength fd before else staleSize start i) ≠ 0

def Prepared (start : State) (before : List Syscall) : Syscall → Prop
  | .seek fd _ => Written start before fd
  | .read fd _ _ => 100 ≤ fd → Written start before fd
  | _ => True

theorem nonzeroSize_of_written {start formatted s : State} {before : List Syscall} {fd : Int}
    (set : setSb start = some formatted) (executed : run syscall formatted before = some s)
    (noNul : ∀ call ∈ before, call.NoNul) (written : Written start before fd) : NonzeroSize s fd := by
  obtain ⟨_, same, done⟩ := setSb_formatted start
  cases set.symm.trans same
  obtain ⟨i, inside, rfl, nonzero⟩ := written
  refine ⟨i, inside, rfl, ?_⟩
  by_cases first : i < 4
  · rw [if_pos first] at nonzero
    exact (run_sizes done.stale executed first 0).2.2 noNul (fun never => absurd rfl never) nonzero
  · rw [if_neg first] at nonzero
    rwa [(run_sizes done.stale executed (show 0 < 4 by decide) 0).1.sizes i (by omega) inside]

theorem written_of_nonzeroSize {start formatted s : State} {before : List Syscall} {fd : Int}
    (set : setSb start = some formatted) (executed : run syscall formatted before = some s)
    (short : ∀ call ∈ before, call.ShortName) (nonzero : NonzeroSize s fd) : Written start before fd := by
  obtain ⟨_, same, done⟩ := setSb_formatted start
  cases set.symm.trans same
  obtain ⟨i, inside, rfl, nonzero⟩ := nonzero
  refine ⟨i, inside, rfl, ?_⟩
  by_cases first : i < 4
  · rw [if_pos first]
    rwa [(run_sizes done.stale executed first 0).2.1 short (done.size_zero first)] at nonzero
  · rw [if_neg first]
    rwa [(run_sizes done.stale executed (show 0 < 4 by decide) 0).1.sizes i (by omega) inside] at nonzero

def NeverByZero (formatted : State) (calls : List Syscall) : Prop :=
  ∀ before call, before ++ [call] <+: calls → ∀ s, run syscall formatted before = some s → Divisible s call

theorem mem_of_shorter {before calls : List Syscall} {last call : Syscall} (shorter : before ++ [last] <+: calls)
    (member : call ∈ before) : call ∈ calls :=
  shorter.subset (List.mem_append_left _ member)

/-- No call divides by zero if each seek and each read is prepared. While names leave the sizes alone, no
    other sequence is safe. -/
theorem never_by_zero_while_prepared {start formatted : State} (set : setSb start = some formatted)
    (calls : List Syscall) (noNul : ∀ call ∈ calls, call.NoNul) :
    ((∀ before call, before ++ [call] <+: calls → Prepared start before call) → NeverByZero formatted calls) ∧
    ((∀ call ∈ calls, call.ShortName) → NeverByZero formatted calls → ∀ before call, before ++ [call] <+: calls →
      ∀ s, run syscall formatted before = some s → Prepared start before call) := by
  constructor
  · intro prepared before call shorter s executed
    have ready := prepared before call shorter
    have strings : ∀ call ∈ before, call.NoNul := fun other member => noNul other (mem_of_shorter shorter member)
    cases call with
    | seek fd position => exact nonzeroSize_of_written set executed strings ready
    | read fd count buf =>
      intro large
      exact nonzeroSize_of_written set executed strings (ready large)
    | create name => trivial
    | write contents fd => trivial
  · intro short never before call shorter s executed
    have safe := never before call shorter s executed
    have names : ∀ call ∈ before, call.ShortName := fun other member => short other (mem_of_shorter shorter member)
    cases call with
    | seek fd position => exact written_of_nonzeroSize set executed names safe
    | read fd count buf =>
      intro large
      exact written_of_nonzeroSize set executed names (safe large)
    | create name => trivial
    | write contents fd => trivial

theorem written_file_divisible :
    ∃ formatted, setSb unformatted = some formatted ∧
      NeverByZero formatted [.create [97], .write [120, 121, 122] 100, .seek 100 4] := by
  obtain ⟨formatted, set, _⟩ := setSb_formatted unformatted
  refine ⟨formatted, set, (never_by_zero_while_prepared set _ ?_).1 ?_⟩
  · intro call member
    rcases List.mem_cons.mp member with rfl | member
    · exact (by decide : ∀ character ∈ ([97] : List (BitVec 8)), character ≠ 0)
    · rcases List.mem_cons.mp member with rfl | last
      · trivial
      · rw [List.mem_singleton.mp last]
        trivial
  · intro before call shorter
    rcases before with _ | ⟨first, _ | ⟨second, _ | ⟨third, rest⟩⟩⟩
    all_goals simp only [List.nil_append, List.cons_append, List.cons_prefix_cons, List.prefix_nil,
      List.append_eq_nil_iff, List.cons_ne_self, and_false] at shorter
    · rw [shorter.1]
      trivial
    · rw [shorter.2.1]
      trivial
    · obtain ⟨rfl, rfl, rfl, _⟩ := shorter
      exact ⟨0, by decide, rfl, by decide⟩

def Syscall.returned (s : State) : Syscall → List Int
  | .create name => ((createFile s name).map Prod.fst).toList
  | _ => []

def issued (s : State) : List Syscall → List Int
  | [] => []
  | call :: calls => call.returned s ++ (syscall s call).elim [] fun next => issued next calls

def Syscall.descriptor : Syscall → Option Int
  | .create _ => none
  | .write _ fd => some fd
  | .read fd _ _ => some fd
  | .seek fd _ => some fd

theorem mem_issued_create {s next : State} {name : List (BitVec 8)} {fd : Int}
    (created : createFile s name = some (fd, next)) : fd ∈ issued s [.create name] := by
  rw [issued]
  apply List.mem_append_left
  rw [Syscall.returned, created]
  exact List.mem_singleton_self fd

def Passed (s : State) (calls : List Syscall) : Prop :=
  ∀ before call, before ++ [call] <+: calls → ∀ fd, call.descriptor = some fd → fd ∈ issued s before

/-- A seek right after the creation divides by zero. -/
theorem created_file_by_zero :
    ¬ ∀ (start formatted : State) (calls : List Syscall), setSb start = some formatted →
      (∀ call ∈ calls, call.NoNul) → Passed formatted calls → NeverByZero formatted calls := by
  intro never
  obtain ⟨formatted, created, set, createdNow, _⟩ := first_file_created
  obtain ⟨_, same, done⟩ := setSb_formatted unformatted
  cases set.symm.trans same
  have called : syscall formatted (.create [97]) = some created := by
    rw [syscall, createdNow]
    rfl
  have safe := never unformatted formatted [.create [97], .seek 100 0] set ?_ ?_ [.create [97]] (.seek 100 0)
    (List.prefix_refl _) created (run_cons.mpr ⟨created, called, rfl⟩)
  · obtain ⟨i, _, equal, nonzero⟩ := safe
    have zero : i = 0 := by
      simp only [inflate] at equal
      omega
    subst zero
    apply nonzero
    rw [(createFile_size done.located createdNow (show 0 < 4 by decide)).1 (by decide)]
    exact done.size_zero (by decide)
  · intro call member
    rcases List.mem_cons.mp member with rfl | last
    · exact (by decide : ∀ character ∈ ([97] : List (BitVec 8)), character ≠ 0)
    · rw [List.mem_singleton.mp last]
      trivial
  · intro before call shorter fd passed
    rcases before with _ | ⟨first, _ | ⟨second, rest⟩⟩
    all_goals simp only [List.nil_append, List.cons_append, List.cons_prefix_cons, List.prefix_nil,
      List.append_eq_nil_iff, List.cons_ne_self, and_false] at shorter
    · rw [shorter.1] at passed
      cases passed
    · obtain ⟨rfl, rfl, _⟩ := shorter
      rw [← Option.some.inj (show some (100 : Int) = some fd from passed)]
      exact mem_issued_create createdNow

end Sbunix.Fs
