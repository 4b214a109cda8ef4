import Sbunix.Fs.Transfer

namespace Sbunix.Fs

open Library

def Proper (s : State) : Operation → Prop
  | .create name => ValidName name
  | .write _ fd => ∃ j : Nat, fd = inflate j ∧ j < 100 ∧ s.type j = typeFile
  | .seek fd _ => ∃ j : Nat, fd = inflate j ∧ j < 100 ∧ s.type j = typeFile
  | .read fd _ _ => ∃ j : Nat, fd = inflate j ∧ j < 100 ∧ s.type j = typeFile

def Operation.Apart (i : Nat) : Operation → Prop
  | .create _ => True
  | .write _ fd => fd ≠ inflate i
  | .seek fd _ => fd ≠ inflate i
  | .read fd _ _ => fd ≠ inflate i

structure Sound (s : State) : Prop where
  located : Located s.sb
  used : ∀ j, j < 4 → s.type j = typeFile → s.usage j = isTrue
  cursor : ∀ j, j < 4 → s.usage j ≠ isTrue → s.position j = 0

structure Effect (s next : State) (j : Nat) : Prop where
  cursor : next.position j = s.position j
  marks : next.type j = s.type j ∧ next.usage j = s.usage j ∨ s.usage j ≠ isTrue ∧ next.usage j = isTrue

theorem Effect.refl (s : State) (j : Nat) : Effect s s j := ⟨rfl, Or.inl ⟨rfl, rfl⟩⟩

theorem effect_of_same {s next : State} {j : Nat}
    (same : ∀ k, k < 128 → ¬ (104 ≤ k ∧ k < 108) → next.inodeList (128 * j + k) = s.inodeList (128 * j + k)) :
    Effect s next j := by
  have load : ∀ offset count, offset + count ≤ 104 ∨ 108 ≤ offset → offset + count ≤ 128 →
      loadWord next.inodeList (128 * j + offset) count = loadWord s.inodeList (128 * j + offset) count := by
    intro offset count apart inside
    apply loadWord_congr
    intro m low high
    have equal := same (m - 128 * j) (by omega) (by omega)
    rwa [Nat.add_sub_cancel' (by omega)] at equal
  exact ⟨load 100 4 (by decide) (by decide),
    Or.inl ⟨load 124 4 (by decide) (by decide), load 120 4 (by decide) (by decide)⟩⟩

section Create

variable {s next : State} {name : List (BitVec 8)} {fd : Int}

theorem getFreeInode_cases (s : State) :
    getFreeInode s = (none, s) ∨ ∃ i, s.usage i ≠ isTrue ∧ getFreeInode s = (some i, s.setField i 120 isTrue 4) := by
  cases search : (List.range inodeCount).find? fun i => s.usage i != isTrue with
  | none => exact Or.inl (getFreeInode_none search)
  | some i =>
    have unused := List.find?_some search
    exact Or.inr ⟨i, bne_iff_ne.mp unused, getFreeInode_some search⟩

theorem createFile_cases (created : createFile s name = some (fd, next)) :
    (fd = -1 ∧ ∃ map used, next = { s with memoryMap := map, usedBlocks := used }) ∨
      ∃ i, s.usage i ≠ isTrue ∧ ∃ map used,
        fd = -1 ∧ next = { s.setField i 120 isTrue 4 with memoryMap := map, usedBlocks := used } ∨
        fd = inflate i ∧ ∃ block, next = rsync
          { s with inodeList := claim s.inodeList i name block, memoryMap := map, usedBlocks := used } := by
  cases search : findFile s name with
  | none =>
    rw [createFile, search] at created
    cases created
  | some found =>
    cases found with
    | some i =>
      rw [createFile_existing search] at created
      cases created
      exact Or.inl ⟨rfl, s.memoryMap, s.usedBlocks, rfl⟩
    | none =>
      rcases getFreeInode_cases s with full | ⟨i, unused, free⟩
      · obtain ⟨block, taken, allocated, same⟩ := getFreeBlock_taken s
        obtain ⟨map, used, rfl⟩ := same.rest
        rw [createFile_failed search full allocated (Or.inl rfl)] at created
        cases created
        exact Or.inl ⟨rfl, map, used, rfl⟩
      · obtain ⟨block, taken, allocated, same⟩ := getFreeBlock_taken (s.setField i 120 isTrue 4)
        obtain ⟨map, used, rfl⟩ := same.rest
        refine Or.inr ⟨i, unused, map, used, ?_⟩
        by_cases failed : block = -1
        · rw [createFile_failed search free allocated (Or.inr failed)] at created
          cases created
          exact Or.inl ⟨rfl, rfl⟩
        · rw [createFile_eq search free allocated failed] at created
          cases created
          exact Or.inr ⟨rfl, BitVec.ofInt 64 block, rfl⟩

theorem createFile_located (located : Located s.sb) (created : createFile s name = some (fd, next)) :
    Located next.sb := by
  rcases createFile_cases created with ⟨_, map, used, rfl⟩ | ⟨i, _, map, used, ⟨_, rfl⟩ | ⟨_, block, rfl⟩⟩
  · exact located
  · exact located
  · exact rsync_located located

theorem createFile_effect (located : Located s.sb) (valid : ValidName name)
    (created : createFile s name = some (fd, next)) {j : Nat} (first : j < 4) : Effect s next j := by
  rcases createFile_cases created with ⟨_, map, used, rfl⟩ | ⟨i, unused, map, used, ⟨_, rfl⟩ | ⟨_, block, rfl⟩⟩
  · exact effect_of_same fun _ _ _ => rfl
  · by_cases here : j = i
    · subst here
      refine ⟨?_, Or.inr ⟨unused, loadWord_storeWord 4 isTrue⟩⟩
      apply loadWord_storeWord_outside
      change 128 * j + 100 + 4 ≤ 128 * j + 120 ∨ _
      omega
    · apply effect_of_same
      intro m bound _
      change storeWord s.inodeList (128 * i + 120) isTrue 4 (128 * j + m) = _
      rw [storeWord, blit_outside (by omega)]
  · generalize claimedEq : ({ s with
      inodeList := claim s.inodeList i name block, memoryMap := map, usedBlocks := used } : State) = claimed
    have list : claimed.inodeList = claim s.inodeList i name block := by rw [← claimedEq]
    have placed : Located claimed.sb := by
      rw [← claimedEq]
      exact located
    have load : ∀ offset count, offset + count ≤ 128 →
        loadWord (rsync claimed).inodeList (128 * j + offset) count =
          loadWord (claim s.inodeList i name block) (128 * j + offset) count := by
      intro offset count inside
      rw [rsync_load placed (by omega) offset count inside, if_pos first, list]
    by_cases here : j = i
    · subst here
      exact ⟨(load 100 4 (by decide)).trans (claim_position valid),
        Or.inr ⟨unused, (load 120 4 (by decide)).trans (claim_usage valid)⟩⟩
    · apply effect_of_same
      intro m bound _
      rw [rsync_inodeList_first placed (by omega), list, claim_other valid (by omega)]

theorem createFile_fresh {i : Nat} (sound : Sound s) (valid : ValidName name) (first : i < 4)
    (created : createFile s name = some (inflate i, next)) : next.type i = typeFile ∧ next.position i = 0 := by
  have effect := createFile_effect sound.located valid created first
  have positive : inflate i ≠ -1 := by
    simp only [inflate]
    omega
  rcases createFile_cases created with ⟨minus, _⟩ | ⟨k, unused, map, used, ⟨minus, _⟩ | ⟨descriptor, block, rfl⟩⟩
  · exact absurd minus positive
  · exact absurd minus positive
  · have index : i = k := by
      simp only [inflate] at descriptor
      omega
    subst index
    refine ⟨?_, effect.cursor.trans (sound.cursor i first unused)⟩
    have placed : Located { s with
      inodeList := claim s.inodeList i name block, memoryMap := map, usedBlocks := used }.sb := sound.located
    have loaded := rsync_load placed (show i < 100 by omega) 124 4 (by decide)
    rw [if_pos first] at loaded
    exact loaded.trans claim_type

end Create

section Others

variable {s next : State}

theorem writeFile_effect {contents : List (BitVec 8)} {fd result : Int} (located : Located s.sb)
    (written : writeFile s contents fd = some (result, next)) :
    Located next.sb ∧ ∀ j, j < 4 → Effect s next j := by
  rcases writeFile_cases written with rfl | ⟨i, rfl⟩
  · exact ⟨located, fun j _ => Effect.refl _ j⟩
  · have placed : Located (s.setField i 104 (stringLength contents) 4).sb := located
    refine ⟨rsync_located placed, ?_⟩
    intro j first
    apply effect_of_same
    intro k bound apart
    change (rsync (s.setField i 104 (stringLength contents) 4)).inodeList (128 * j + k) = _
    rw [rsync_inodeList_first placed (by omega)]
    change storeWord s.inodeList (128 * i + 104) (stringLength contents) 4 (128 * j + k) = _
    rw [storeWord, blit_outside (by omega)]

def moveCursor (s : State) (i : Nat) (value : BitVec 32) (buffer : Bytes) : State :=
  { s.setField i 100 value 4 with readBuffer := buffer }

theorem moveCursor_effect (s : State) {i j : Nat} (value : BitVec 32) (buffer : Bytes) (different : j ≠ i) :
    Effect s (moveCursor s i value buffer) j := by
  apply effect_of_same
  intro k bound _
  change storeWord s.inodeList (128 * i + 100) value 4 (128 * j + k) = _
  rw [storeWord, blit_outside (by omega)]

theorem moveCursor_load (s : State) (i : Nat) (value : BitVec 32) (buffer : Bytes) (j offset count : Nat)
    (behind : 104 ≤ offset) (inside : offset + count ≤ 128) :
    loadWord (moveCursor s i value buffer).inodeList (128 * j + offset) count =
      loadWord s.inodeList (128 * j + offset) count := by
  apply loadWord_storeWord_outside
  change 128 * j + offset + count ≤ 128 * i + 100 ∨ 128 * i + 100 + 4 ≤ 128 * j + offset
  omega

theorem seekFile_eq {position : BitVec 32} {i : Nat} (inside : i < 100)
    (sought : seekFile s (inflate i) position = some next) : ∃ value, next = moveCursor s i value s.readBuffer := by
  rw [seekFile, (entryOf_inflate inside).2] at sought
  simp only [Option.bind_eq_bind, Option.bind_some, Option.bind_eq_some_iff, Option.pure_def,
    Option.some.injEq] at sought
  obtain ⟨value, _, rfl⟩ := sought
  exact ⟨value, rfl⟩

theorem readFile_eq {count : BitVec 32} {buf : Bytes} {result : Option Bytes} {i : Nat} (inside : i < 100)
    (done : readFile s (inflate i) count buf = some (result, next)) :
    ∃ value, next = moveCursor s i value (readDisk s ((s.startBlock i).setWidth 32)).readBuffer := by
  obtain ⟨notMinus, entry⟩ := entryOf_inflate inside
  rw [readFile, if_neg notMinus, entry] at done
  simp only [Option.bind_eq_bind, Option.bind_some, Option.bind_eq_some_iff, Option.pure_def, Option.some.injEq,
    Prod.mk.injEq] at done
  obtain ⟨value, _, _, rfl⟩ := done
  exact ⟨value, rfl⟩

structure Fresh (s : State) (i : Nat) : Prop where
  type : s.type i = typeFile
  cursor : s.position i = 0

theorem Sound.of_effects (sound : Sound s) (located : Located next.sb) (effects : ∀ j, j < 4 → Effect s next j) :
    Sound next where
  located := located
  used j first type := by
    rcases (effects j first).marks with ⟨sameType, sameUsage⟩ | ⟨_, used⟩
    · rw [sameUsage]
      exact sound.used j first (sameType ▸ type)
    · exact used
  cursor j first unused := by
    rcases (effects j first).marks with ⟨_, sameUsage⟩ | ⟨_, used⟩
    · rw [(effects j first).cursor]
      exact sound.cursor j first (sameUsage ▸ unused)
    · exact absurd used unused

theorem Fresh.of_effect {i : Nat} (sound : Sound s) (first : i < 4) (fresh : Fresh s i) (effect : Effect s next i) :
    Fresh next i := by
  refine ⟨?_, effect.cursor.trans fresh.cursor⟩
  rcases effect.marks with ⟨sameType, _⟩ | ⟨unused, _⟩
  · rw [sameType, fresh.type]
  · exact absurd (sound.used i first fresh.type) unused

theorem Sound.moveCursor {i : Nat} {value : BitVec 32} {buffer : Bytes} (sound : Sound s)
    (file : s.type i = typeFile) : Sound (moveCursor s i value buffer) where
  located := sound.located
  used j first type := by
    have sameType : (Fs.moveCursor s i value buffer).type j = s.type j :=
      moveCursor_load s i value buffer j 124 4 (by decide) (by decide)
    have sameUsage : (Fs.moveCursor s i value buffer).usage j = s.usage j :=
      moveCursor_load s i value buffer j 120 4 (by decide) (by decide)
    exact sameUsage.trans (sound.used j first (sameType.symm.trans type))
  cursor j first unused := by
    have sameUsage : (Fs.moveCursor s i value buffer).usage j = s.usage j :=
      moveCursor_load s i value buffer j 120 4 (by decide) (by decide)
    rw [sameUsage] at unused
    have different : j ≠ i := by
      intro same
      subst same
      exact unused (sound.used j first file)
    exact (moveCursor_effect s value buffer different).cursor.trans (sound.cursor j first unused)

theorem Sound.moved {i : Nat} {value : BitVec 32} {buffer : Bytes} (sound : Sound s) (file : s.type i = typeFile) :
    Sound (Fs.moveCursor s i value buffer) ∧
      ∀ k : Nat, k < 4 → inflate i ≠ inflate k → Fresh s k → Fresh (Fs.moveCursor s i value buffer) k := by
  refine ⟨sound.moveCursor file, ?_⟩
  intro k first apart fresh
  have different : k ≠ i := by
    intro same
    subst same
    exact apart rfl
  exact fresh.of_effect sound first (moveCursor_effect s value buffer different)

/-- A proper operation keeps the table sound, and a fresh file that it is not addressed to stays fresh. -/
theorem Sound.perform {operation : Operation} (sound : Sound s) (proper : Proper s operation)
    (performed : perform s operation = some next) :
    Sound next ∧ ∀ i, i < 4 → operation.Apart i → Fresh s i → Fresh next i := by
  cases operation with
  | create name =>
    rw [Fs.perform, Option.map_eq_some_iff] at performed
    obtain ⟨result, created, rfl⟩ := performed
    have effects : ∀ j, j < 4 → Effect s result.2 j :=
      fun j first => createFile_effect sound.located proper created first
    exact ⟨sound.of_effects (createFile_located sound.located created) effects,
      fun i first _ fresh => fresh.of_effect sound first (effects i first)⟩
  | write contents fd =>
    rw [Fs.perform, Option.map_eq_some_iff] at performed
    obtain ⟨result, written, rfl⟩ := performed
    obtain ⟨located, effects⟩ := writeFile_effect sound.located written
    exact ⟨sound.of_effects located effects, fun i first _ fresh => fresh.of_effect sound first (effects i first)⟩
  | seek fd position =>
    obtain ⟨i, rfl, inside, file⟩ := proper
    obtain ⟨value, rfl⟩ := seekFile_eq inside performed
    exact sound.moved file
  | read fd count buf =>
    obtain ⟨i, rfl, inside, file⟩ := proper
    rw [Fs.perform, Option.map_eq_some_iff] at performed
    obtain ⟨result, done, rfl⟩ := performed
    obtain ⟨value, equal⟩ := readFile_eq inside done
    rw [equal]
    exact sound.moved file

end Others

inductive Move where
  | read (count : BitVec 32) (buf : Bytes)
  | seek (position : BitVec 32)

def Move.amount : Move → BitVec 32
  | .read count _ => count
  | .seek position => position

def move (fd : Int) (s : State) : Move → Option State
  | .read count buf => (readFile s fd count buf).map Prod.snd
  | .seek position => seekFile s fd position

structure Stored (s : State) (i : Nat) (contents : List (BitVec 8)) : Prop where
  size : (s.size i).toNat = contents.length
  data : ∀ k, k < contents.length → s.disk (512 * sector s i + k) = contents.getD k 0

section Moves

variable {s : State} {i : Nat} {contents : List (BitVec 8)}

theorem remainder_eq {value size : BitVec 32} (positive : size ≠ 0) : remainder value size = some (value % size) :=
  if_neg positive

theorem seekFile_result (inside : i < 100) (positive : s.size i ≠ 0) (position : BitVec 32) :
    seekFile s (inflate i) position =
      some (moveCursor s i ((position + s.position i) % s.size i) s.readBuffer) := by
  rw [seekFile, (entryOf_inflate inside).2]
  simp only [Option.bind_eq_bind, Option.bind_some, remainder_eq positive]
  rfl

theorem readFile_result (inside : i < 100) (positive : s.size i ≠ 0) (count : BitVec 32) (buf : Bytes) :
    ∃ delivered buffer,
      readFile s (inflate i) count buf =
        some (some delivered, moveCursor s i ((s.position i + count) % s.size i) buffer) ∧
      ∀ k, k < count.toNat → (s.position i).toNat + k < 512 →
        delivered k = s.disk (512 * sector s i + ((s.position i).toNat + k)) := by
  obtain ⟨notMinus, entry⟩ := entryOf_inflate inside
  let loaded := readDisk s ((s.startBlock i).setWidth 32)
  refine ⟨blit (blit buf 0 (fun _ => 0) 8) 0 (fun k => loaded.readBuffer ((s.position i).toNat + k)) count.toNat,
    loaded.readBuffer, ?_, ?_⟩
  · have same : loaded.size i ≠ 0 := positive
    rw [readFile, if_neg notMinus, entry]
    simp only [Option.bind_eq_bind, Option.bind_some]
    rw [remainder_eq same]
    rfl
  · intro k bound inSector
    rw [blit_zero bound, readDisk_readBuffer, blit_zero inSector]
    rfl

theorem stored_positive (stored : Stored s i contents) (nonempty : contents ≠ []) : s.size i ≠ 0 := by
  intro zero
  have size := stored.size
  rw [zero] at size
  exact nonempty (List.eq_nil_of_length_eq_zero size.symm)

theorem Stored.moveCursor (stored : Stored s i contents) (value : BitVec 32) (buffer : Bytes) :
    Stored (moveCursor s i value buffer) i contents ∧ (moveCursor s i value buffer).position i = value := by
  have size : (Fs.moveCursor s i value buffer).size i = s.size i :=
    moveCursor_load s i value buffer i 104 4 (by decide) (by decide)
  have block : sector (Fs.moveCursor s i value buffer) i = sector s i :=
    congrArg (fun word : BitVec 64 => (word.setWidth 32).toNat)
      (moveCursor_load s i value buffer i 112 8 (by decide) (by decide))
  refine ⟨⟨?_, ?_⟩, loadWord_storeWord 4 value⟩
  · rw [size, stored.size]
  · intro k bound
    rw [block]
    exact stored.data k bound

theorem advance {position amount size : BitVec 32} {length : Nat} (sized : size.toNat = length)
    (short : length ≤ 512) (before : position.toNat < length) (nonnegative : amount.toNat < 2 ^ 31) :
    ((position + amount) % size).toNat = (position.toNat + amount.toNat) % length := by
  have small : position.toNat + amount.toNat < 2 ^ 32 := by omega
  rw [BitVec.toNat_umod, BitVec.toNat_add, sized, Nat.mod_eq_of_lt small]

theorem Stored.moved (stored : Stored s i contents) (inside : i < 100) (short : contents.length ≤ 512)
    (before : (s.position i).toNat < contents.length) {step : Move} (nonnegative : step.amount.toNat < 2 ^ 31) :
    ∃ next, move (inflate i) s step = some next ∧ Stored next i contents ∧
      (next.position i).toNat = ((s.position i).toNat + step.amount.toNat) % contents.length := by
  have positive := stored_positive stored fun empty => by simp [empty] at before
  cases step with
  | read count buf =>
    obtain ⟨delivered, buffer, done, _⟩ := readFile_result inside positive count buf
    obtain ⟨kept, cursor⟩ := stored.moveCursor ((s.position i + count) % s.size i) buffer
    refine ⟨_, ?_, kept, ?_⟩
    · rw [move, done]
      rfl
    · rw [cursor]
      exact advance stored.size short before nonnegative
  | seek position =>
    obtain ⟨kept, cursor⟩ := stored.moveCursor ((position + s.position i) % s.size i) s.readBuffer
    refine ⟨_, seekFile_result inside positive position, kept, ?_⟩
    rw [cursor, BitVec.add_comm]
    exact advance stored.size short before nonnegative

theorem Stored.moves (stored : Stored s i contents) (inside : i < 100) (short : contents.length ≤ 512)
    (before : (s.position i).toNat < contents.length) {steps : List Move}
    (nonnegative : ∀ step ∈ steps, step.amount.toNat < 2 ^ 31) :
    ∃ t, run (move (inflate i)) s steps = some t ∧ Stored t i contents ∧
      (t.position i).toNat =
        ((s.position i).toNat + (steps.map fun step => step.amount.toNat).sum) % contents.length := by
  induction steps generalizing s with
  | nil => exact ⟨s, rfl, stored, (Nat.mod_eq_of_lt before).symm⟩
  | cons step steps ih =>
    obtain ⟨next, moved, kept, cursor⟩ := stored.moved inside short before (nonnegative step List.mem_cons_self)
    have positive : 0 < contents.length := by omega
    have within : (next.position i).toNat < contents.length := by
      rw [cursor]
      exact Nat.mod_lt _ positive
    obtain ⟨t, executed, final, total⟩ :=
      ih kept within fun other member => nonnegative other (List.mem_cons_of_mem _ member)
    refine ⟨t, run_cons.mpr ⟨next, moved, executed⟩, final, ?_⟩
    rw [total, cursor, Nat.mod_add_mod, List.map_cons, List.sum_cons, Nat.add_assoc]

theorem stored_of_write {result : Int} {written : State} (located : Located s.sb) (first : i < 4)
    (fresh : Fresh s i) (short : contents.length ≤ 512)
    (done : writeFile s contents (inflate i) = some (result, written)) :
    Stored written i contents ∧ written.position i = 0 := by
  have inside : i < 100 := by omega
  obtain ⟨next, same, list, _, flushed⟩ := writeFile_disk located inside short
  cases done.symm.trans same
  obtain ⟨_, effects⟩ := writeFile_effect located done
  have placed : Located (s.setField i 104 (stringLength contents) 4).sb := located
  have block : sector written i = flushSector s i := by
    rw [← sector_synced located inside contents, sector, sector, State.startBlock, list]
    rfl
  refine ⟨⟨?_, ?_⟩, (effects i first).cursor.trans fresh.cursor⟩
  · have size : written.size i = stringLength contents := by
      rw [State.size, list, show inodeSize = 128 from rfl, rsync_load placed inside 104 4 (by decide), if_pos first]
      exact loadWord_storeWord 4 (stringLength contents)
    rw [size, stringLength_short short]
  · intro k bound
    rw [block, flushed k (by omega), payload, blit_zero bound]
    rfl

end Moves

theorem Formatted.sound {start s : State} (formatted : Formatted start s) : Sound s := by
  have zero : ∀ j offset count, j < 4 → offset + count ≤ 128 →
      loadWord s.inodeList (128 * j + offset) count = 0 := by
    intro j offset count first inside
    apply loadWord_of_zero
    intro m _ high
    exact formatted.first m (by omega)
  constructor
  · exact formatted.located
  · intro j first type
    rw [show s.type j = 0 from zero j 124 4 first (by decide)] at type
    exact absurd type (by decide)
  · intro j first _
    exact zero j 100 4 first (by decide)

/-- A file of the first sector reads back what was written to it, from the cursor that the moves add up to. -/
theorem written_file_reads_back {start formatted s created ready written : State}
    {earlier between : List Operation} {name contents : List (BitVec 8)} {i : Nat} {result : Int}
    (set : setSb start = some formatted) (earlierProper : Admitted perform Proper formatted earlier)
    (reached : run perform formatted earlier = some s) (valid : ValidName name) (first : i < 4)
    (createdNow : createFile s name = some (inflate i, created))
    (betweenProper : Admitted perform (fun s operation => Proper s operation ∧ operation.Apart i) created between)
    (waited : run perform created between = some ready) (nonempty : contents ≠ [])
    (short : contents.length ≤ 512)
    (writtenNow : writeFile ready contents (inflate i) = some (result, written)) (steps : List Move)
    (nonnegative : ∀ step ∈ steps, step.amount.toNat < 2 ^ 31) :
    ∃ t, run (move (inflate i)) written steps = some t ∧
      (t.position i).toNat = (steps.map fun step => step.amount.toNat).sum % contents.length ∧
      ∀ (count : BitVec 32) (buf : Bytes), count.toNat < 2 ^ 31 → ∃ delivered next,
        readFile t (inflate i) count buf = some (some delivered, next) ∧
        ((t.position i).toNat + count.toNat ≤ contents.length →
          ∀ k, k < count.toNat → delivered k = contents.getD ((t.position i).toNat + k) 0) := by
  obtain ⟨same, setSame, done⟩ := setSb_formatted start
  cases set.symm.trans setSame
  have sound : Sound s := run_preserves_admitted Sound
    (fun _ _ _ before proper performed => (before.perform proper performed).1) done.sound earlierProper reached
  have soundCreated : Sound created :=
    sound.of_effects (createFile_located sound.located createdNow) fun j small =>
      createFile_effect sound.located valid createdNow small
  obtain ⟨type, cursor⟩ := createFile_fresh sound valid first createdNow
  obtain ⟨soundReady, fresh⟩ := run_preserves_admitted (fun s => Sound s ∧ Fresh s i)
    (fun _ _ _ before proper performed =>
      have after := before.1.perform proper.1 performed
      ⟨after.1, after.2 i first proper.2 before.2⟩)
    ⟨soundCreated, type, cursor⟩ betweenProper waited
  obtain ⟨stored, start⟩ := stored_of_write soundReady.located first fresh short writtenNow
  have positive : 0 < contents.length := List.length_pos_iff.mpr nonempty
  have inside : i < 100 := by omega
  have before : (written.position i).toNat < contents.length := by
    rw [start]
    exact positive
  obtain ⟨t, executed, kept, total⟩ := stored.moves inside short before nonnegative
  have zero : (written.position i).toNat = 0 := by
    rw [start]
    rfl
  rw [zero, Nat.zero_add] at total
  refine ⟨t, executed, total, ?_⟩
  intro count buf _
  obtain ⟨delivered, buffer, read, data⟩ := readFile_result inside (stored_positive kept nonempty) count buf
  refine ⟨delivered, _, read, ?_⟩
  intro fits k bound
  rw [data k bound (by omega), kept.data _ (by omega)]

theorem first_file_created :
    ∃ formatted created, setSb unformatted = some formatted ∧
      createFile formatted [97] = some (inflate (0 : Nat), created) ∧ Table created [[97]] ∧
      created.position 0 = 0 := by
  obtain ⟨formatted, set, done⟩ := setSb_formatted unformatted
  have table := done.table (zero_buffer _ _ _) rfl
  have valid : ValidName [97] := ⟨by decide, by decide, by decide⟩
  have empty : Counted formatted 0 := table.counted (by decide)
  have unused : formatted.usage 0 ≠ isTrue := by
    rw [(table.vacant 0 (by decide) (by decide)).2]
    decide
  obtain ⟨created, createdNow, _, holds, _⟩ :=
    table.create_counted empty (by decide) rfl unused valid List.not_mem_nil
  exact ⟨formatted, created, set, createdNow, holds,
    (createFile_fresh done.sound valid (show 0 < 4 by decide) createdNow).2⟩

theorem first_file_reads_back :
    ∃ formatted created written, setSb unformatted = some formatted ∧
      createFile formatted [97] = some (inflate (0 : Nat), created) ∧
      writeFile created [120, 121, 122] (inflate (0 : Nat)) = some (1, written) ∧
      ∃ t, run (move (inflate (0 : Nat))) written [.seek 4, .read 2 fun _ => 0] = some t ∧
        (t.position 0).toNat = 6 % 3 := by
  obtain ⟨formatted, created, set, createdNow, holds, _⟩ := first_file_created
  obtain ⟨written, writtenNow, _⟩ :=
    holds.write_disk (show 0 < 1 by decide) (show [120, 121, 122].length ≤ 512 by decide)
  have none : Admitted perform Proper formatted [] := trivial
  have alone : Admitted perform (fun s operation => Proper s operation ∧ operation.Apart 0) created [] := trivial
  obtain ⟨t, executed, cursor, _⟩ := written_file_reads_back set none rfl (holds.valid [97] List.mem_cons_self)
    (show 0 < 4 by decide) createdNow alone rfl (show ([120, 121, 122] : List (BitVec 8)) ≠ [] by decide) (by decide)
    writtenNow [.seek 4, .read 2 fun _ => 0] (by
      intro step member
      rcases List.mem_cons.mp member with rfl | last
      · decide
      · rw [List.mem_singleton.mp last]
        decide)
  exact ⟨formatted, created, written, set, createdNow, writtenNow, t, executed, cursor⟩

end Sbunix.Fs
