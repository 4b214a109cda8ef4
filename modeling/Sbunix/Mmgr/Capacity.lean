import Mathlib.Data.Finset.Prod
import Sbunix.Mmgr.Undo

namespace Sbunix.Mmgr

open Library

def AllocFails (s : State) : Prop := getTotalUsableBlocks s = 0 ∨ mmgrGetFirstFree s = some (-1)

instance (s : State) : Decidable (AllocFails s) := inferInstanceAs (Decidable (_ ∨ _))

inductive FrameCall where
  | alloc
  | free (p : BitVec 64)

/-- The manager together with the frames that its callers have not freed. The first of them has address zero. -/
structure Frames where
  manager : State
  live : List (BitVec 64)

def frameStep (frames : Frames) : FrameCall → Option Frames
  | .alloc => do
    let (p, manager) ← mmgrAllocBlock frames.manager
    return ⟨manager, if AllocFails frames.manager then frames.live else p :: frames.live⟩
  | .free p =>
    if p ∈ frames.live then do
      let manager ← mmgrFreeBlock frames.manager p
      return ⟨manager, frames.live.erase p⟩
    else none

def words (total : BitVec 64) : Nat := min (total / 64).toNat 1200

def units (count : Nat) : Finset (Nat × Nat) := Finset.range count ×ˢ Finset.range 32

def busyUnits (total : BitVec 64) (s : State) : Finset (Nat × Nat) :=
  (units (words total)).filter fun unit => busy s (64 * unit.1 + unit.2)

theorem words_le (total : BitVec 64) : words total ≤ total.toNat / 64 ∧ words total ≤ 1200 := by
  have quotient : (total / 64).toNat = total.toNat / 64 := BitVec.toNat_udiv
  rw [words, quotient]
  exact ⟨Nat.min_le_left _ _, Nat.min_le_right _ _⟩

theorem card_units (count : Nat) : (units count).card = 32 * count := by
  rw [units, Finset.card_product, Finset.card_range, Finset.card_range, Nat.mul_comm]

theorem mem_units {count : Nat} {unit : Nat × Nat} : unit ∈ units count ↔ unit.1 < count ∧ unit.2 < 32 := by
  rw [units, Finset.mem_product, Finset.mem_range, Finset.mem_range]

section Units

variable {total : BitVec 64} {s next : State}

theorem mem_busyUnits {unit : Nat × Nat} : unit ∈ busyUnits total s ↔
    unit.1 < words total ∧ unit.2 < 32 ∧ busy s (64 * unit.1 + unit.2) = true := by
  rw [busyUnits, Finset.mem_filter, mem_units, and_assoc]

theorem busyUnits_subset : busyUnits total s ⊆ units (words total) := Finset.filter_subset _ _

structure Low (total : BitVec 64) (block : Nat) : Prop where
  half : block % 64 < 32
  word : block / 64 < words total

def unitOf (block : Nat) : Nat × Nat := (block / 64, block % 64)

variable {block : Nat}

theorem Low.bound (low : Low total block) : block < 76800 := by
  have word := (Nat.lt_min.mp low.word).2
  omega

theorem Low.aliased (low : Low total block) {unit : Nat × Nat} (bit : unit.2 < 32) :
    Aliased block (64 * unit.1 + unit.2) ↔ unit = unitOf block := by
  have half := low.half
  rw [Prod.ext_iff]
  simp only [Aliased, unitOf]
  constructor
  · rintro ⟨word, same⟩
    exact ⟨by omega, by omega⟩
  · rintro ⟨word, same⟩
    exact ⟨by omega, by omega⟩

theorem Low.unit_mem (low : Low total block) : unitOf block ∈ busyUnits total s ↔ busy s block = true := by
  rw [mem_busyUnits, show 64 * (unitOf block).1 + (unitOf block).2 = block from Nat.div_add_mod block 64]
  exact ⟨fun member => member.2.2, fun marked => ⟨low.word, low.half, marked⟩⟩

theorem Low.busyUnits_set (low : Low total block)
    (updated : ∀ other, busy next other = (busy s other || decide (Aliased block other))) :
    busyUnits total next = insert (unitOf block) (busyUnits total s) := by
  ext unit
  rw [Finset.mem_insert, mem_busyUnits, mem_busyUnits, updated, Bool.or_eq_true, decide_eq_true_eq]
  constructor
  · rintro ⟨word, bit, marked | here⟩
    · exact Or.inr ⟨word, bit, marked⟩
    · exact Or.inl ((low.aliased bit).mp here)
  · rintro (rfl | ⟨word, bit, marked⟩)
    · exact ⟨low.word, low.half, Or.inr ((low.aliased low.half).mpr rfl)⟩
    · exact ⟨word, bit, Or.inl marked⟩

theorem Low.busyUnits_unset (low : Low total block)
    (updated : ∀ other, busy next other = (busy s other && !decide (Aliased block other))) :
    busyUnits total next = (busyUnits total s).erase (unitOf block) := by
  ext unit
  rw [Finset.mem_erase, mem_busyUnits, mem_busyUnits, updated, Bool.and_eq_true, Bool.not_eq_true',
    decide_eq_false_iff_not]
  constructor
  · rintro ⟨word, bit, marked, elsewhere⟩
    exact ⟨fun here => elsewhere ((low.aliased bit).mpr here), word, bit, marked⟩
  · rintro ⟨elsewhere, word, bit, marked⟩
    exact ⟨word, bit, marked, fun here => elsewhere ((low.aliased bit).mp here)⟩

end Units

theorem Candidate.low {s : State} {block : Nat} (candidate : Candidate s block) : Low s.maxBlocks block := by
  obtain ⟨half, counted, h, _⟩ := candidate
  exact ⟨half, Nat.lt_min.mpr ⟨counted, h⟩⟩

theorem Uniform.candidate_iff {s : State} (uniform : Uniform s) {block : Nat} :
    Candidate s block ↔ Low s.maxBlocks block ∧ busy s block = false := by
  constructor
  · exact fun candidate => ⟨candidate.low, candidate.not_busy⟩
  · rintro ⟨low, free⟩
    obtain ⟨counted, h⟩ := Nat.lt_min.mp low.word
    exact ⟨low.half, counted, h, uniform.mask_clear h free⟩

/-- A search that ends without a block has looked at every word that is counted. -/
theorem firstFreeFrom_absent {s : State} {fuel i : Nat} (enough : fuel + i ≤ 1201)
    (absent : firstFreeFrom s fuel i = some (-1)) : (s.maxBlocks / 64).toNat ≤ 1200 := by
  induction fuel generalizing i with
  | zero => cases absent
  | succ fuel ih =>
    simp only [firstFreeFrom] at absent
    split at absent
    · split at absent
      · split at absent
        · split at absent
          · have number := Option.some.inj absent
            omega
          · exact ih (by omega) absent
        · exact ih (by omega) absent
      · cases absent
    · rename_i ended
      simp only [getTotalBlocks] at ended
      omega

theorem allocBlock_outcome {s next : State} {p : BitVec 64} (executed : mmgrAllocBlock s = some (p, next)) :
    AllocFails s ∧ next = s ∨
    ¬ AllocFails s ∧ ∃ block h, Candidate s block ∧ p = blockAddress block ∧ next = taken s block h := by
  rcases allocBlock_cases executed with ⟨_, rfl, none⟩ | ⟨block, h, candidate, _, usable, address, stored⟩
  · refine Or.inl ⟨?_, rfl⟩
    unfold mmgrAllocBlock at executed
    split at executed
    · rename_i usable
      exact Or.inl (BitVec.le_zero_iff.mp usable)
    · rename_i usable
      simp only [Option.bind_eq_bind, Option.bind_eq_some_iff] at executed
      obtain ⟨result, found, _⟩ := executed
      have missing := none.resolve_left fun zero => usable (BitVec.le_zero_iff.mpr zero)
      rcases firstFreeFrom_spec found with ⟨rfl, _⟩ | ⟨block, _, candidate, _⟩
      · exact Or.inr found
      · exact absurd candidate (missing block)
  · refine Or.inr ⟨?_, block, h, candidate, address, stored⟩
    rintro (none | absent)
    · exact usable none
    · rcases firstFreeFrom_spec absent with ⟨_, missing⟩ | ⟨other, found, _⟩
      · exact missing block (by omega) candidate
      · omega

theorem blockAddress_injective {left right : Nat} (leftBound : left < 76800) (rightBound : right < 76800)
    (same : blockAddress left = blockAddress right) : left = right := by
  have values := congrArg BitVec.toNat same
  rw [blockAddress_toNat leftBound, blockAddress_toNat rightBound] at values
  omega

structure Frames.Counted (total : BitVec 64) (frames : Frames) : Prop where
  size : frames.manager.maxBlocks = total
  uniform : Uniform frames.manager
  used : frames.manager.usedBlocks.toNat = (busyUnits total frames.manager).card
  held : ∀ p ∈ frames.live, ∃ block, p = blockAddress block ∧ Low total block ∧ busy frames.manager block = true
  distinct : frames.live.Nodup
  length : frames.live.length ≤ frames.manager.usedBlocks.toNat

section Counted

variable {total : BitVec 64} {frames : Frames} (counted : frames.Counted total)

include counted

theorem Frames.Counted.used_le : frames.manager.usedBlocks.toNat ≤ 32 * words total := by
  rw [counted.used, ← card_units]
  exact Finset.card_le_card busyUnits_subset

theorem Frames.Counted.busy_of_full (full : frames.manager.usedBlocks.toNat = 32 * words total)
    {block : Nat} (low : Low total block) : busy frames.manager block = true := by
  have every : busyUnits total frames.manager = units (words total) := by
    apply Finset.eq_of_subset_of_card_le busyUnits_subset
    rw [card_units, ← full, counted.used]
  rw [← low.unit_mem, every, mem_units]
  exact ⟨low.word, low.half⟩

theorem Frames.Counted.full_of_absent (absent : ∀ block, ¬ Candidate frames.manager block) :
    frames.manager.usedBlocks.toNat = 32 * words total := by
  rw [counted.used, ← card_units]
  apply congrArg Finset.card
  apply busyUnits_subset.antisymm
  intro unit member
  obtain ⟨word, bit⟩ := mem_units.mp member
  have low : Low total (64 * unit.1 + unit.2) := ⟨by omega, by omega⟩
  refine mem_busyUnits.mpr ⟨word, bit, ?_⟩
  cases marked : busy frames.manager (64 * unit.1 + unit.2) with
  | true => rfl
  | false => exact absurd (counted.uniform.candidate_iff.mpr ⟨counted.size ▸ low, marked⟩) (absent _)

/-- The allocator fails exactly when one of every two blocks is in use, which are all it can tell apart. -/
theorem Frames.Counted.fails_iff (whole : total.toNat % 64 = 0) (positive : total ≠ 0) :
    AllocFails frames.manager ↔ total.toNat ≤ 2 * frames.manager.usedBlocks.toNat := by
  have quotient : (frames.manager.maxBlocks / 64).toNat = total.toNat / 64 := by
    rw [counted.size, BitVec.toNat_udiv]
    rfl
  have nonzero : total.toNat ≠ 0 := fun zero => positive (BitVec.eq_of_toNat_eq zero)
  have limit := counted.used_le
  obtain ⟨bound, array⟩ := words_le total
  constructor
  · rintro (none | absent)
    · have equal : total = frames.manager.usedBlocks := by
        rw [getTotalUsableBlocks, getTotalBlocks, getUsedBlocks, counted.size] at none
        bv_omega
      rw [← equal]
      omega
    · have few := firstFreeFrom_absent (Nat.le_refl 1201) absent
      have all : words total = total.toNat / 64 := by
        rw [counted.size] at few quotient
        rw [words, Nat.min_eq_left few, quotient]
      rcases firstFreeFrom_spec absent with ⟨_, missing⟩ | ⟨block, found, _⟩
      · have full := counted.full_of_absent fun block => missing block (by omega)
        omega
      · omega
  · intro most
    have full : frames.manager.usedBlocks.toNat = 32 * words total := by omega
    have fits : (frames.manager.maxBlocks / 64).toNat ≤ 1200 := by omega
    obtain ⟨result, searched⟩ := firstFreeFrom_total fits (show 1201 + 0 = 1201 from rfl) (by omega)
    rcases firstFreeFrom_spec searched with ⟨rfl, _⟩ | ⟨block, _, candidate, _⟩
    · exact Or.inr searched
    · have marked := counted.busy_of_full full (counted.size ▸ candidate.low)
      rw [candidate.not_busy] at marked
      cases marked

theorem Frames.Counted.alloc {p : BitVec 64} {next : State}
    (executed : mmgrAllocBlock frames.manager = some (p, next)) :
    (⟨next, if AllocFails frames.manager then frames.live else p :: frames.live⟩ : Frames).Counted total := by
  have uniform := counted.uniform.allocBlock executed
  rcases allocBlock_outcome executed with ⟨fails, rfl⟩ | ⟨serves, block, h, candidate, rfl, rfl⟩
  · rw [if_pos fails]
    exact ⟨counted.size, uniform, counted.used, counted.held, counted.distinct, counted.length⟩
  · rw [if_neg serves]
    have low : Low total block := counted.size ▸ candidate.low
    have updated (other : Nat) : busy (taken frames.manager block h) other =
        (busy frames.manager other || decide (Aliased block other)) := by
      have set : mmgrSetBlock frames.manager block = some _ := setBlock_eq.mpr ⟨h, rfl⟩
      exact busy_setBlock set other
    have fresh : unitOf block ∉ busyUnits total frames.manager := by
      rw [low.unit_mem, candidate.not_busy]
      exact Bool.false_ne_true
    have counter : (frames.manager.usedBlocks + 1).toNat = frames.manager.usedBlocks.toNat + 1 := by
      have limit := counted.used_le
      have array := (words_le total).2
      rw [BitVec.toNat_add]
      change (frames.manager.usedBlocks.toNat + 1) % 2 ^ 64 = _
      omega
    refine ⟨counted.size, uniform, ?_, ?_, ?_, ?_⟩
    · change (frames.manager.usedBlocks + 1).toNat = _
      rw [low.busyUnits_set updated, Finset.card_insert_of_notMem fresh, counter, counted.used]
    · intro held member
      rcases List.mem_cons.mp member with rfl | member
      · refine ⟨block, rfl, low, ?_⟩
        rw [updated, decide_eq_true (show Aliased block block from ⟨rfl, rfl⟩), Bool.or_true]
      · obtain ⟨other, address, otherLow, marked⟩ := counted.held held member
        refine ⟨other, address, otherLow, ?_⟩
        rw [updated, marked, Bool.true_or]
    · refine List.nodup_cons.mpr ⟨?_, counted.distinct⟩
      intro member
      obtain ⟨other, address, otherLow, marked⟩ := counted.held _ member
      rw [← blockAddress_injective candidate.bound otherLow.bound address, candidate.not_busy] at marked
      cases marked
    · have length := counted.length
      change frames.live.length + 1 ≤ (frames.manager.usedBlocks + 1).toNat
      omega

theorem Frames.Counted.free {p : BitVec 64} {next : State} (member : p ∈ frames.live)
    (executed : mmgrFreeBlock frames.manager p = some next) :
    (⟨next, frames.live.erase p⟩ : Frames).Counted total := by
  have uniform := counted.uniform.freeBlock executed
  have shorter := List.length_erase_of_mem member
  have length := counted.length
  unfold mmgrFreeBlock at executed
  split at executed
  · cases executed
    refine ⟨counted.size, uniform, counted.used, ?_, counted.distinct.erase p, ?_⟩
    · exact fun held inside => counted.held held (List.mem_of_mem_erase inside)
    · change (frames.live.erase p).length ≤ frames.manager.usedBlocks.toNat
      omega
  · obtain ⟨block, rfl, low, marked⟩ := counted.held p member
    rw [block_of_address low.bound] at executed
    simp only [Option.bind_eq_bind, Option.bind_eq_some_iff] at executed
    obtain ⟨cleared, unset, executed⟩ := executed
    have updated := busy_unsetBlock unset
    obtain ⟨h, stored⟩ := unsetBlock_eq.mp unset
    obtain rfl := Option.some.inj executed
    have mine : unitOf block ∈ busyUnits total frames.manager := low.unit_mem.mpr marked
    have counter : (cleared.usedBlocks - 1).toNat = frames.manager.usedBlocks.toNat - 1 := by
      have positive := Finset.card_pos.mpr ⟨_, mine⟩
      rw [← counted.used] at positive
      have bound := frames.manager.usedBlocks.isLt
      rw [stored, BitVec.toNat_sub]
      change (2 ^ 64 - 1 + frames.manager.usedBlocks.toNat) % 2 ^ 64 = _
      omega
    refine ⟨by rw [stored]; exact counted.size, uniform, ?_, ?_, counted.distinct.erase _, ?_⟩
    · have fewer : busyUnits total { cleared with usedBlocks := cleared.usedBlocks - 1 } = _ :=
        low.busyUnits_unset updated
      rw [fewer, Finset.card_erase_of_mem mine, ← counted.used]
      exact counter
    · intro held inside
      obtain ⟨other, rfl, otherLow, otherMarked⟩ := counted.held held (List.mem_of_mem_erase inside)
      have apart : ¬ Aliased block other := by
        rintro ⟨word, bit⟩
        have half := low.half
        have otherHalf := otherLow.half
        obtain rfl : block = other := by omega
        exact counted.distinct.not_mem_erase inside
      refine ⟨other, rfl, otherLow, ?_⟩
      rw [busy_usedBlocks, updated, otherMarked, decide_eq_false apart]
      rfl
    · change (frames.live.erase (blockAddress block)).length ≤ (cleared.usedBlocks - 1).toNat
      omega

end Counted

theorem frameStep_counted {total : BitVec 64} (frames : Frames) (call : FrameCall) (next : Frames)
    (counted : frames.Counted total) (stepped : frameStep frames call = some next) : next.Counted total := by
  cases call with
  | alloc =>
    simp only [frameStep, Option.bind_eq_bind, Option.bind_eq_some_iff] at stepped
    obtain ⟨⟨p, manager⟩, executed, stepped⟩ := stepped
    cases stepped
    exact counted.alloc executed
  | free p =>
    simp only [frameStep, Option.bind_eq_bind, Option.ite_none_right_eq_some, Option.bind_eq_some_iff] at stepped
    obtain ⟨member, manager, executed, stepped⟩ := stepped
    cases stepped
    exact counted.free member executed

theorem empty_counted {manager : State} (zero : ∀ index, manager.memoryMap index = 0)
    (unused : manager.usedBlocks = 0) : (⟨manager, []⟩ : Frames).Counted manager.maxBlocks := by
  refine ⟨rfl, uniform_of_zero zero, ?_, by simp, List.nodup_nil, Nat.zero_le _⟩
  have nothing : busyUnits manager.maxBlocks manager = ∅ := by
    apply Finset.eq_empty_of_forall_notMem
    intro unit member
    have marked := (mem_busyUnits.mp member).2.2
    unfold busy at marked
    split at marked
    · rw [zero, BitVec.ofNat_eq_ofNat, BitVec.getLsbD_zero] at marked
      cases marked
    · cases marked
  change manager.usedBlocks.toNat = (busyUnits manager.maxBlocks manager).card
  rw [unused, nothing]
  rfl

/-- The allocator fails while blocks are left as soon as half of them are in use, and not before. -/
theorem alloc_fails_late_iff (manager : State) (zero : ∀ index, manager.memoryMap index = 0)
    (unused : manager.usedBlocks = 0) (whole : manager.maxBlocks.toNat % 64 = 0) (calls : List FrameCall)
    (frames : Frames) (executed : run frameStep ⟨manager, []⟩ calls = some frames) :
    (AllocFails frames.manager → frames.live.length = manager.maxBlocks.toNat) ↔
      manager.maxBlocks = 0 ∨ 2 * frames.manager.usedBlocks.toNat < manager.maxBlocks.toNat := by
  have counted :=
    run_preserves (Frames.Counted manager.maxBlocks) frameStep_counted (empty_counted zero unused) executed
  have length := counted.length
  have limit := counted.used_le
  have bound := (words_le manager.maxBlocks).1
  by_cases positive : manager.maxBlocks = 0
  · refine ⟨fun _ => Or.inl positive, fun _ _ => ?_⟩
    have nothing : manager.maxBlocks.toNat = 0 := congrArg BitVec.toNat positive
    omega
  · have nonzero : manager.maxBlocks.toNat ≠ 0 := fun none => positive (BitVec.eq_of_toNat_eq none)
    rw [counted.fails_iff whole positive]
    constructor
    · intro late
      refine Or.inr (Nat.lt_of_not_le fun most => ?_)
      have all := late most
      omega
    · rintro (none | few) most
      · exact absurd none positive
      · omega

theorem one_word_not_full : ∃ frames,
    run frameStep ⟨⟨fun _ => 0, 0, 64⟩, []⟩ (List.replicate 31 .alloc) = some frames ∧
    2 * frames.manager.usedBlocks.toNat < 64 ∧ (AllocFails frames.manager → frames.live.length = 64) := by
  have used : (run frameStep ⟨⟨fun _ => 0, 0, 64⟩, []⟩ (List.replicate 31 .alloc)).map
      (fun frames => frames.manager.usedBlocks) = some 31 := by decide +kernel
  obtain ⟨frames, executed, count⟩ := Option.map_eq_some_iff.mp used
  have few : 2 * frames.manager.usedBlocks.toNat < 64 := by
    rw [count]
    decide
  exact ⟨frames, executed, few,
    (alloc_fails_late_iff _ (fun _ => rfl) rfl rfl _ frames executed).mpr (Or.inr few)⟩

/-- With one word of blocks, the allocator fails when thirty-two of the sixty-four are live. -/
theorem one_word_half_lost : ∃ frames,
    run frameStep ⟨⟨fun _ => 0, 0, 64⟩, []⟩ (List.replicate 32 .alloc) = some frames ∧
    AllocFails frames.manager ∧ frames.live.length = 32 := by
  have fails : (run frameStep ⟨⟨fun _ => 0, 0, 64⟩, []⟩ (List.replicate 32 .alloc)).map
      (fun frames => (decide (AllocFails frames.manager), frames.live.length)) = some (true, 32) := by decide +kernel
  obtain ⟨frames, executed, result⟩ := Option.map_eq_some_iff.mp fails
  obtain ⟨failed, length⟩ := Prod.mk.inj result
  exact ⟨frames, executed, of_decide_eq_true failed, length⟩

end Sbunix.Mmgr
