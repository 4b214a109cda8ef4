import Mathlib.Data.List.GetD
import Sbunix.Fs.Sync

namespace Sbunix.Fs

open Library

structure ValidName (name : List (BitVec 8)) : Prop where
  nonempty : name ≠ []
  short : name.length ≤ 99
  noNul : ∀ character ∈ name, character ≠ 0

theorem ValidName.length_bytes {name : List (BitVec 8)} (valid : ValidName name) :
    (stringLength name).toNat = name.length := by
  have short := valid.short
  rw [stringLength, BitVec.toNat_ofNat]
  omega

def SameEntry (left right : State) (i : Nat) : Prop :=
  ∀ k, k < 128 → ¬ (100 ≤ k ∧ k < 108) → left.inodeList (128 * i + k) = right.inodeList (128 * i + k)

theorem SameEntry.load {left right : State} {i offset count : Nat} (same : SameEntry left right i)
    (inside : offset + count ≤ 128) (apart : 108 ≤ offset) :
    loadWord left.inodeList (inodeSize * i + offset) count =
      loadWord right.inodeList (inodeSize * i + offset) count := by
  apply loadWord_congr
  intro m low high
  change 128 * i + offset ≤ m at low
  change m < 128 * i + offset + count at high
  have index : 128 * i + (m - 128 * i) = m := by omega
  rw [← index]
  exact same (m - 128 * i) (by omega) (by omega)

structure Entry (s : State) (i : Nat) (name : List (BitVec 8)) : Prop where
  name : ∀ k, k < 100 → s.inodeList (128 * i + k) = name.getD k 0
  usage : s.usage i = isTrue
  type : s.type i = typeFile
  startBlock : s.startBlock i = BitVec.ofNat 64 (6 + i)

structure Vacant (s : State) (i : Nat) : Prop where
  name : ∀ k, k < 100 → s.inodeList (128 * i + k) = 0
  type : s.type i = 0

theorem Entry.congr {left right : State} {i : Nat} {name : List (BitVec 8)} (entry : Entry left i name)
    (same : SameEntry right left i) : Entry right i name where
  name k bound := (same k (by omega) (by omega)).trans (entry.name k bound)
  usage := (same.load (by decide) (by decide)).trans entry.usage
  type := (same.load (by decide) (by decide)).trans entry.type
  startBlock := (same.load (by decide) (by decide)).trans entry.startBlock

theorem Vacant.congr {left right : State} {i : Nat} (vacant : Vacant left i) (same : SameEntry right left i) :
    Vacant right i where
  name k bound := (same k (by omega) (by omega)).trans (vacant.name k bound)
  type := (same.load (by decide) (by decide)).trans vacant.type

theorem SameEntry.usage {left right : State} {i : Nat} (same : SameEntry left right i) :
    left.usage i = right.usage i :=
  same.load (by decide) (by decide)

theorem strlen_eq {bytes : Bytes} {limit start length : Nat} (inside : length < limit - start)
    (ended : bytes (start + length) = 0) (before : ∀ k, k < length → bytes (start + k) ≠ 0) :
    strlen bytes limit start = some length := by
  rw [strlen, List.find?_range_eq_some]
  refine ⟨beq_iff_eq.mpr ended, List.mem_range.mpr inside, ?_⟩
  intro k bound
  simpa using before k bound

theorem Entry.strcmpEqual {s : State} {i : Nat} {name : List (BitVec 8)} (entry : Entry s i name)
    (valid : ValidName name) (inside : i < 100) (other : List (BitVec 8)) :
    strcmpEqual s.inodeList inodeListSize (inodeSize * i) other = some (decide (name = other)) := by
  have short := valid.short
  have length : strlen s.inodeList inodeListSize (inodeSize * i) = some name.length := by
    apply strlen_eq
    · change name.length < 12800 - 128 * i
      omega
    · rw [show inodeSize = 128 from rfl, entry.name _ (by omega)]
      simp
    · intro k bound
      rw [show inodeSize = 128 from rfl, entry.name k (by omega), List.getD_eq_getElem _ _ bound]
      exact valid.noNul _ (List.getElem_mem bound)
  rw [Fs.strcmpEqual, length, Option.map_some]
  congr 1
  apply Bool.eq_iff_iff.mpr
  rw [Bool.and_eq_true, beq_iff_eq, List.all_eq_true, decide_eq_true_iff]
  constructor
  · intro both
    apply List.ext_getElem both.1
    intro k left right
    have equal := both.2 k (List.mem_range.mpr left)
    rw [beq_iff_eq, show inodeSize = 128 from rfl, entry.name k (by omega), List.getD_eq_getElem _ _ left,
      List.getD_eq_getElem _ _ right] at equal
    exact equal
  · intro equal
    subst equal
    refine ⟨rfl, ?_⟩
    intro k member
    have bound := List.mem_range.mp member
    rw [beq_iff_eq, show inodeSize = 128 from rfl, entry.name k (by omega)]

theorem Vacant.strcmpEqual {s : State} {i : Nat} (vacant : Vacant s i) (inside : i < 100)
    {other : List (BitVec 8)} (nonempty : other ≠ []) :
    strcmpEqual s.inodeList inodeListSize (inodeSize * i) other = some false := by
  have length : strlen s.inodeList inodeListSize (inodeSize * i) = some 0 := by
    apply strlen_eq
    · change 0 < 12800 - 128 * i
      omega
    · exact vacant.name 0 (by decide)
    · intro k bound
      omega
  rw [Fs.strcmpEqual, length, Option.map_some]
  cases other with
  | nil => exact absurd rfl nonempty
  | cons => rfl

theorem findFileFrom_eq {s : State} {name : List (BitVec 8)} {same : Nat → Bool} {remaining i : Nat}
    (compared : ∀ j, i ≤ j → j < i + remaining →
      strcmpEqual s.inodeList inodeListSize (inodeSize * j) name = some (same j)) :
    findFileFrom s name remaining i =
      some ((List.range' i remaining).find? fun j => same j && s.type j == typeFile) := by
  induction remaining generalizing i with
  | zero => rfl
  | succ remaining ih =>
    rw [findFileFrom, compared i (by omega) (by omega), List.range'_succ, List.find?_cons]
    simp only [Option.bind_eq_bind, Option.bind_some]
    by_cases found : same i = true ∧ s.type i = typeFile
    · rw [if_pos found]
      simp [found.1, found.2]
    · rw [if_neg found, ih fun j low high => compared j (by omega) (by omega)]
      have missed : (same i && s.type i == typeFile) = false := by
        rw [Bool.and_eq_false_iff, beq_eq_false_iff_ne]
        by_cases equal : same i = true
        · exact Or.inr fun type => found ⟨equal, type⟩
        · exact Or.inl (by simpa using equal)
      simp only [missed]

def claim (bytes : Bytes) (i : Nat) (name : List (BitVec 8)) (block : BitVec 64) : Bytes :=
  let bytes := storeWord bytes (inodeSize * i + 120) isTrue 4
  let bytes := blit bytes (inodeSize * i) (stringBytes name) (stringLength name).toNat
  let bytes := storeWord bytes (inodeSize * i + 112) block 8
  storeWord bytes (inodeSize * i + 124) typeFile 4

section Claim

variable {bytes : Bytes} {i : Nat} {name : List (BitVec 8)} {block : BitVec 64}

theorem claim_other (valid : ValidName name) {m : Nat} (apart : m < 128 * i ∨ 128 * i + 128 ≤ m) :
    claim bytes i name block m = bytes m := by
  have short := valid.short
  have length := valid.length_bytes
  simp only [claim, storeWord, inodeSize]
  rw [blit_outside (by omega), blit_outside (by omega), blit_outside (by omega), blit_outside (by omega)]

theorem claim_name (valid : ValidName name) (clear : ∀ k, k < 100 → bytes (128 * i + k) = 0) {k : Nat}
    (bound : k < 100) : claim bytes i name block (128 * i + k) = name.getD k 0 := by
  have length := valid.length_bytes
  simp only [claim, storeWord, inodeSize]
  rw [blit_outside (by omega), blit_outside (by omega)]
  by_cases inside : k < name.length
  · rw [blit_add (by omega)]
    rfl
  · rw [blit_outside (by omega), blit_outside (by omega), clear k bound, List.getD_eq_default _ _ (by omega)]

theorem claim_position (valid : ValidName name) :
    loadWord (claim bytes i name block) (128 * i + 100) 4 = loadWord bytes (128 * i + 100) 4 := by
  have short := valid.short
  have length := valid.length_bytes
  simp only [claim, storeWord, inodeSize]
  rw [loadWord_blit_outside (by omega), loadWord_blit_outside (by omega), loadWord_blit_outside (by omega),
    loadWord_blit_outside (by omega)]

theorem claim_size (short : name.length ≤ 104) (j : Nat) :
    loadWord (claim bytes i name block) (128 * j + 104) 4 = loadWord bytes (128 * j + 104) 4 := by
  have length : (stringLength name).toNat = name.length := by
    rw [stringLength, BitVec.toNat_ofNat]
    omega
  simp only [claim, storeWord, inodeSize]
  rw [loadWord_blit_outside (by omega), loadWord_blit_outside (by omega), loadWord_blit_outside (by omega),
    loadWord_blit_outside (by omega)]

/-- The characters of a name that is too long can only make a size nonzero. -/
theorem claim_size_ne_zero (noNul : ∀ character ∈ name, character ≠ 0) (j : Nat)
    (before : loadWord bytes (128 * j + 104) 4 ≠ 0) :
    loadWord (claim bytes i name block) (128 * j + 104) 4 ≠ 0 := by
  have length : (stringLength name).toNat ≤ name.length := by
    rw [stringLength, BitVec.toNat_ofNat]
    exact Nat.mod_le _ _
  simp only [claim, storeWord, inodeSize]
  rw [loadWord_blit_outside (by omega), loadWord_blit_outside (by omega)]
  apply loadWord_blit_ne_zero
  · intro k bound
    rw [stringBytes, List.getD_eq_getElem _ _ (by omega)]
    exact noNul _ (List.getElem_mem _)
  · rwa [loadWord_blit_outside (by omega)]

theorem claim_usage (valid : ValidName name) :
    loadWord (claim bytes i name block) (128 * i + 120) 4 = isTrue := by
  have short := valid.short
  have length := valid.length_bytes
  simp only [claim, inodeSize]
  rw [loadWord_storeWord_outside (by omega), loadWord_storeWord_outside (by omega),
    loadWord_blit_outside (by omega)]
  exact loadWord_storeWord 4 isTrue

theorem claim_startBlock : loadWord (claim bytes i name block) (128 * i + 112) 8 = block := by
  simp only [claim, inodeSize]
  rw [loadWord_storeWord_outside (by omega)]
  exact loadWord_storeWord 8 block

theorem claim_type : loadWord (claim bytes i name block) (128 * i + 124) 4 = typeFile :=
  loadWord_storeWord 4 typeFile

end Claim

theorem getFreeInode_some {s : State} {i : Nat}
    (free : (List.range inodeCount).find? (fun i => s.usage i != isTrue) = some i) :
    getFreeInode s = (some i, s.setField i 120 isTrue 4) := by
  rw [getFreeInode, free]

theorem getFreeInode_none {s : State}
    (full : (List.range inodeCount).find? (fun i => s.usage i != isTrue) = none) : getFreeInode s = (none, s) := by
  rw [getFreeInode, full]

theorem createFile_eq {s chosen taken : State} {name : List (BitVec 8)} {i : Nat} {block : Int}
    (missing : findFile s name = some none) (free : getFreeInode s = (some i, chosen))
    (allocated : getFreeBlock chosen = some (block, taken)) (found : block ≠ -1) :
    createFile s name =
      some (inflate i, rsync (((taken.setName i name).setField i 112 (BitVec.ofInt 64 block) 8).setField i 124
        typeFile 4)) := by
  unfold createFile
  rw [missing, free]
  generalize getFreeBlock = allocate at allocated ⊢
  generalize rsync = sync
  simp only [Option.bind_eq_bind, Option.bind_some, Option.pure_def, allocated, if_neg found]

end Sbunix.Fs
